import Miviex.Pipe
import Miviex.SocketRuns
import Miviex.Terminal

/-! What `poll` says and what the calls do. They agree, except that a datagram socket is always
ready for writing, whether the queue of the socket it writes to has room or not. -/
namespace Miviex
open Option Runs

section Pipes
variable {d : Pipes} {me : Addr}

def PipeOutcome.waits (o : PipeOutcome) : Bool :=
  match o.next with
  | .asleep _ _ => true
  | .done (.failed e) => e = .errno .eagain || e = .restartsys
  | .done _ => false

def Pipes.pollFd (d : Pipes) (me : Addr) (fd : Nat) : Option Polled :=
  (d.openFile me fd).map (fun x => (d.pipe x.object).poll x.access)

def Pipes.Agrees (d : Pipes) : Prop := ∀ me fd polled, d.pollFd me fd = some polled →
  (polled.pin = true → ∀ pending len mapped, (d.enter me pending (.read fd len mapped)).waits = false) ∧
  (polled.pout = true → ∀ pending b, (d.enter me pending (.write fd (some [b]))).waits = false)

theorem pipeReadAtOnce (k pending len mapped) {p} (some_ : p.ring.len > 0) :
    ((d.work k (readPieces k pending [(len,mapped)] [] p false)).waits) = false := by
  have nonempty : p.ring.len ≠ 0 := by omega
  obtain ⟨bytes,read⟩ : ∃ bytes, (p.read pending len).result = some (.ok bytes) := by simp [Pipe.read,nonempty]
  unfold readPieces
  split
  · rfl
  split
  · rfl
  simp only [read]
  split <;> rfl

theorem pipeWriteAtOnce (k id pending b) {p} (readers : p.readers ≠ 0) (room : p.ring.len < pipeSize) :
    (d.work k (writePieces k id pending [[b]] 0 p false)).waits = false := by
  have wrote : (p.write id pending [b]).result = .returns (.ok 1) := by
    have fits : ¬ ([b].length ≤ pipeSize ∧ pipeSize - p.ring.len < [b].length ∧ p.readers ≠ 0) := by
      simp only [List.length_singleton]
      omega
    have filled : p.ring.fill pipeSize [b] = (p.ring.push pipeSize b,[]) := by simp [Ring.fill,room]
    unfold Pipe.write
    rw [if_neg fits]
    simp [Pipe.writeLoop,readers,Nat.ne_of_lt room,filled]
  have whole : [b].take ([b].length % 2^32) = [b] := rfl
  simp only [writePieces,whole,afterWrite,wrote]
  rfl

theorem Pipes.agrees (d : Pipes) : d.Agrees := by
  intro me fd polled hook
  obtain ⟨x,opened,rfl⟩ := map_eq_some_iff.mp hook
  unfold Pipe.poll
  constructor
  · intro ready pending len mapped
    split at ready
    · simp only [Pipes.enter,Pipes.sysRead,opened,Pipes.readFrom]
      split
      · rfl
      · exact pipeReadAtOnce _ _ _ _ (by simpa using ready)
    · split at ready <;> cases ready
  intro ready pending b
  split at ready
  · cases ready
  rename_i writes
  split at ready
  · cases ready
  rename_i readers
  simp only [Pipes.enter,Pipes.sysWrite,opened,writes,if_false,Pipes.writeTo]
  exact pipeWriteAtOnce _ _ _ b readers (by simpa using ready)

end Pipes

/- The hooks of a terminal's device files; `/dev/tty` of a process without a controlling
terminal is no terminal. No result of a read: the caller sleeps. -/
def Tty.devRead : Option Tty → Nat → Except Errno (Option (List UInt8 × Tty))
  | none, _ => .error .eio
  | some x, n => .ok (x.read n)

def Tty.devWrite : Option Tty → List UInt8 → Except Errno (Nat × Tty)
  | none, _ => .error .eio
  | some x, s => .ok (s.length,x.write s)

def Tty.devPoll : Option Tty → Polled
  | none => {perr := true}
  | some x => {pin := x.readable, pout := true}

def Tty.Agrees (t : Option Tty) : Prop :=
  ((Tty.devPoll t).pin = true → ∀ n, Tty.devRead t n ≠ .ok none) ∧
  ((Tty.devPoll t).pout = true → ∀ b, ∃ x, Tty.devWrite t [b] = .ok (1,x))

theorem Tty.agrees (t) : Tty.Agrees t := by
  cases t with
  | none => exact ⟨nofun,nofun⟩
  | some x =>
  refine ⟨fun ready n => ?_,fun _ b => ⟨x.write [b],rfl⟩⟩
  simp only [Tty.devPoll,Tty.readable,Bool.or_eq_true,decide_eq_true_eq] at ready
  simp only [Tty.devRead,Tty.read,ne_eq,Except.ok.injEq]
  rcases ready with input | empty
  · simp [input]
  split
  · nofun
  cases canon : x.mode icanon with
  | true | false => simp_all

def SockOutcome.waits (o : SockOutcome) : Bool :=
  match o.next with
  | .asleep _ _ => true
  | .done (.failed e) => e = .errno .eagain || e = .restartsys
  | .done _ => false

structure View.Prompt (v : View) : Prop where
  resolve : ∀ p path, v.resolve p path ≠ .error .eagain
  permission : ∀ p n, v.permission p n ≠ some .eagain

inductive SockRequest.TakesFrom (fd : Nat) : SockRequest → Prop where
  | recv (size mapped dontwait peek) : TakesFrom fd (.recv fd size mapped dontwait peek)
  | read (size mapped) : TakesFrom fd (.read fd size mapped)
  | accept (known nonblock cloexec limit memory) (refused : Option Errno) (fault : ∀ e, refused = some e → e = .efault) :
      TakesFrom fd (.accept fd known nonblock cloexec limit memory refused)

/- The calls that send one byte; `get_addr` never fails with EAGAIN. -/
inductive SockRequest.SendsByte (fd : Nat) : SockRequest → Prop where
  | send (b address dontwait nosig memory) (prompt : address ≠ some (.error .eagain)) :
      SendsByte fd (.send fd (some [b]) address dontwait nosig memory)
  | write (b memory) : SendsByte fd (.write fd (some [b]) memory)

namespace Sockets

variable {d : Sockets} {me : Addr} {s fd : Nat} {pending : Bool}

def pollFd (d : Sockets) (me : Addr) (fd : Nat) : Option Polled :=
  (d.fdSock me fd).map (fun x => d.sockPoll x.2.object)

def Agrees (d : Sockets) : Prop := ∀ me fd polled, d.pollFd me fd = some polled →
  (polled.pin = true → ∀ pending q, SockRequest.TakesFrom fd q → (d.enter me pending q).waits = false) ∧
  (polled.pout = true → ∀ pending q, SockRequest.SendsByte fd q → (d.enter me pending q).waits = false)

def Heard (d : Sockets) : Prop := ∀ s, (d.get s).state = .listening → (d.get s).type = .stream

theorem Heard.modify {f} (heard : Heard d)
    (keeps : (f (d.get s)).state = .listening → (f (d.get s)).type = .stream) : Heard (d.modify s f) := by
  intro t
  rw [getModify]
  split
  · exact keeps
  · exact heard t

theorem Act.heard {e first second wakes} (act : Act me d first e second wakes)
    (owned : Owned d d.files.objects first) (heard : Heard d) : Heard e := by
  cases act with
  | make _ type =>
    intro t
    rw [(getNew d type t).1]
    split
    · nofun
    · exact heard t
  | pair _ type =>
    intro t
    rw [getPair]
    split
    · nofun
    split
    · nofun
    · exact heard t
  | free _ s =>
    have freed := owned.freed.2
    intro t
    by_cases gone : t ∈ s::(d.get s).backlog
    · rw [freed.getGone gone]
      nofun
    rcases freed.kept t gone with same | ⟨cut,_⟩
    · rw [same]; exact heard t
    · rw [cut]; exact heard t
  | install | close => exact heard
  | pop _ s c rest queue => exact heard.modify (heard s)
  | bind _ s path opened unbound =>
    have named : Heard (d.modify s (fun x => {x with bound := some d.nextNode, name := path})) := heard.modify (heard s)
    exact named
  | aim _ s path state dgram calm => exact heard.modify (fun listens => absurd listens calm)
  | tune _ s f frame => exact heard.modify (by rw [frame]; exact heard s)
  | take _ s k inside =>
    have dropped : Heard (d.modify s (fun x => {x with ring := x.ring.drop sockBuf k})) := heard.modify (heard s)
    exact dropped
  | place _ s p id src number peer writes =>
    have filled : Heard (d.modify p (fun y => {y with ring := ((d.get p).ring.fill sockBuf src).1})) :=
      heard.modify (heard p)
    exact filled
  | shut _ s connected =>
    have marked : Heard (d.modify s (fun x => {x with wrShut := true})) := heard.modify (heard s)
    unfold shutWrite
    dsimp only
    split
    · exact marked
    rename_i p _
    exact marked.modify (marked p)
  | note _ view sends returned grown => exact heard

theorem Acts.heard {e first second wakes} (acts : Acts me d first e second wakes)
    (owned : Owned d d.files.objects first) (heard : Heard d) : Heard e := by
  induction acts with
  | nil => exact heard
  | cons act _ ih => exact ih (act.owned owned) (act.heard owned heard)

theorem Heard.joined (heard : Heard d) (alive : Live d s) (apart : s ≠ d.next) (l path) : Heard (d.join s l path) := by
  have linked : Heard (d.linked s l path) := by
    intro t
    rw [getLinked alive apart]
    split
    · nofun
    split
    · nofun
    · exact heard t
  have queued : Heard ((d.linked s l path).modify l (fun z => {z with backlog := z.backlog ++ [d.next]})) :=
    linked.modify (linked l)
  exact queued

theorem stepHeard {idle m n} (sound : Sound idle m) (heard : Heard m.dev)
    {e} (taken : step idle m e = some n) : Heard n.dev := by
  have joins : ∀ s o, Live m.dev s → Joins m.dev s o → Heard o.dev := by
    rintro s o alive ⟨l,_,path,_,_,_,_,rfl⟩
    exact heard.joined alive (Nat.ne_of_lt (sound.owned.fresh s alive)) l path
  cases Calls.stepTurn taken with
  | still dev _ _ _ => rw [dev]; exact heard
  | entered me q o outside entry result =>
    rw [result,Calls.finishDev]
    subst entry
    rcases enterEffect me sound.held (m.pending me) q with acts | ⟨s,opened,_,_,joined⟩ | listens
    · exact acts.heard sound.owned heard
    · exact joins s _ (sound.owned.opened opened).1 joined
    obtain ⟨_,_,_,x,_,_,stream,_,_,shape⟩ := listens
    have told : Heard (m.dev.enter me (m.pending me) q).dev := by
      rw [shape]
      exact heard.modify (fun _ => stream)
    exact told
  | resumed me call o inside goes result =>
    rw [result,Calls.finishDev]
    subst goes
    rcases resumeEffect me sound.held (m.pending me) call (sound.number inside) with ⟨acts,_⟩ | ⟨c,rfl,joined⟩
    · exact acts.heard sound.owned heard
    · exact joins c.sock _ (sound.owned.opened (sound.seated me _ inside)).1 joined
  | forked me child _ _ dev _ _ => rw [dev]; exact heard
  | exited me _ dev _ _ =>
    have acts := sound.exit me
    have left : n.dev = (m.dev.exit me).1 := dev
    rw [left]
    exact acts.heard sound.owned heard

theorem recvAtOnce (heard : Heard d) (r : Receiving) (ready : (d.sockPoll r.sock).pin = true) :
    (d.doRecv pending r).waits = false := by
  unfold sockPoll at ready
  unfold doRecv
  split
  · rename_i stream
    unfold streamRecv
    dsimp only
    split
    · rename_i empty
      split
      · rfl
      rename_i connected
      rw [not_not] at connected
      have ended : (d.get r.sock).eof = true ∨ (d.get r.sock).rdShut = true := by
        simpa [connected,stream,empty] using ready
      rw [if_pos ended]
      rfl
    · split <;> rfl
  rename_i dgram
  have quiet : (d.get r.sock).state ≠ .listening := by
    intro listens
    rw [heard r.sock listens] at dgram
    cases dgram
  unfold dgramRecv
  dsimp only
  split
  · rename_i none_
    simp [quiet,dgram,none_] at ready
  · split <;> rfl

theorem acceptAtOnce (a : Accepting) (fault : ∀ e, a.refused = some e → e = .efault)
    (queue : (d.get a.sock).backlog ≠ []) : (d.acceptLoop me pending a).waits = false := by
  unfold acceptLoop
  split
  · rename_i empty
    exact absurd empty queue
  split
  · rename_i e refused
    rw [fault e refused]
    rfl
  unfold sockInstall
  split
  · rfl
  unfold Files.fdInstall
  dsimp only
  split <;> rfl

theorem mailByteFull (me pending) {t} (m : Mailing) (b) (one : m.data = [b])
    (found : d.dgramTarget me m.sock m.target = .ok t) (full : ¬ (d.get t).queued < sockBuf) :
    (d.dgramSend me pending m).waits = true := by
  have short : ¬ m.data.length > sockBuf := by simp [one,sockBuf]
  unfold dgramSend
  rw [if_neg short,found]
  dsimp only
  rw [if_pos (by rw [one,List.length_singleton]; omega)]
  split
  · rfl
  · split <;> rfl

theorem streamByteAtOnce (b nonblock nosig) {p} (peer : (d.get s).peer = some p)
    (room : (d.get p).ring.len < sockBuf) : (d.streamSend pending s [b] nonblock nosig).waits = false := by
  have started : (d.begins s).get = d.get := rfl
  unfold streamSend
  split
  · rfl
  dsimp only [List.length_singleton]
  unfold sendLoop
  dsimp only
  rw [started,peer]
  cases open_ : (some p).filter (fun p => !((d.get s).wrShut || (d.get p).rdShut)) with
  | none => rfl
  | some q =>
    obtain ⟨same,_⟩ := filter_eq_some_iff.mp open_
    cases same
    dsimp only
    rw [if_neg (Nat.ne_of_lt room)]
    rfl

/- Every datagram socket that is open can send a byte at once, wherever it may send. -/
def Roomy (d : Sockets) : Prop := ∀ me fd g x target t, d.fdSock me fd = some (g,x) → (d.get x.object).type = .dgram →
  d.dgramTarget me x.object target = .ok t → (d.get t).queued < sockBuf

theorem takesAtOnce (heard : Heard d) {g x} (found : d.fdSock me fd = some (g,x))
    (ready : (d.sockPoll x.object).pin = true) {q} (takes : q.TakesFrom fd) : (d.enter me pending q).waits = false := by
  cases takes with
  | recv size mapped dontwait peek =>
    simp only [enter,sysRecv,found]
    split
    · rfl
    · exact recvAtOnce heard _ ready
  | read size mapped =>
    simp only [enter,sockRead,found]
    split
    · rfl
    split
    · rfl
    · exact recvAtOnce heard _ ready
  | accept known nonblock cloexec limit memory refused fault =>
    simp only [enter,sysAccept4,found]
    split
    · rfl
    split
    · rfl
    rename_i listens
    rw [not_not] at listens
    have queue : (d.get x.object).backlog ≠ [] := by
      intro empty
      simp [sockPoll,listens,empty] at ready
    exact acceptAtOnce _ fault queue

section

variable (prompt : d.view.Prompt)
include prompt

theorem lookupPrompt (path) : d.lookup me path ≠ .error .eagain := by
  unfold lookup
  split
  · rename_i e resolved
    rintro ⟨⟩
    exact prompt.resolve me path resolved
  split
  · nofun
  split
  · rename_i e refused
    rintro ⟨⟩
    exact prompt.permission me _ refused
  · split <;> nofun

theorem targetPrompt (me s target) : d.dgramTarget me s target ≠ .error .eagain := by
  have named path : dgramTarget.named d me path ≠ .error .eagain := by
    unfold dgramTarget.named
    split
    · rename_i e found
      rintro ⟨⟩
      exact lookupPrompt prompt path found
    · split <;> nofun
  unfold dgramTarget
  dsimp only
  split
  · nofun
  · split
    · split <;> nofun
    · exact named _
  · exact named _

theorem mailByteWaits (me pending) (m : Mailing) (b) (one : m.data = [b]) :
    (d.dgramSend me pending m).waits = true ↔ ∃ t, d.dgramTarget me m.sock m.target = .ok t ∧ ¬ (d.get t).queued < sockBuf := by
  refine ⟨fun waits => ?_,fun ⟨t,found,full⟩ => mailByteFull me pending m b one found full⟩
  have short : ¬ m.data.length > sockBuf := by simp [one,sockBuf]
  have never := targetPrompt prompt me m.sock m.target
  unfold dgramSend at waits
  rw [if_neg short] at waits
  cases found : d.dgramTarget me m.sock m.target with
  | error e =>
    rw [found] at never waits
    have other : e ≠ .eagain := fun same => never (by rw [same])
    simp [failed,SockOutcome.waits,other] at waits
  | ok t =>
    refine ⟨t,rfl,fun room => ?_⟩
    rw [found] at waits
    dsimp only at waits
    rw [if_neg (by rw [one,List.length_singleton]; omega)] at waits
    split at waits <;> cases waits

theorem sendByteAtOnce (b target nonblock nosig memory) (ready : (d.sockPoll s).pout = true)
    (room : ∀ t, (d.get s).type = .dgram → d.dgramTarget me s target = .ok t → (d.get t).queued < sockBuf) :
    (d.doSend me pending s [b] target nonblock nosig memory).waits = false := by
  unfold doSend
  dsimp only
  split
  · split <;> rfl
  · rename_i stream
    unfold sockPoll at ready
    dsimp only at ready
    split at ready
    · cases ready
    rw [stream] at ready
    simp only [reduceCtorEq,if_false] at ready
    split at ready
    · cases ready
    simp only [any_eq_true,decide_eq_true_eq] at ready
    obtain ⟨p,peer,fits⟩ := ready
    exact streamByteAtOnce b nonblock nosig peer fits
  rename_i dgram
  rw [← Bool.not_eq_true,mailByteWaits prompt me pending _ b rfl]
  rintro ⟨t,found,full⟩
  exact full (room t dgram found)

theorem sendsAtOnce (roomy : Roomy d) {g x}
    (found : d.fdSock me fd = some (g,x)) (ready : (d.sockPoll x.object).pout = true) {q}
    (sends : q.SendsByte fd) : (d.enter me pending q).waits = false := by
  cases sends with
  | send b address dontwait nosig memory known =>
    simp only [enter,sysSend,found]
    cases address with
    | none => exact sendByteAtOnce prompt b none _ _ _ ready (fun t dgram => roomy me fd g x none t found dgram)
    | some path =>
      cases path with
      | ok path =>
        exact sendByteAtOnce prompt b (some path) _ _ _ ready (fun t dgram => roomy me fd g x (some path) t found dgram)
      | error e =>
        have other : e ≠ .eagain := fun same => known (by rw [same])
        simp [failed,SockOutcome.waits,other]
  | write b memory =>
    simp only [enter,sockWrite,found,List.isEmpty_cons,Bool.false_eq_true,if_false]
    exact sendByteAtOnce prompt b none _ _ _ ready (fun t dgram => roomy me fd g x none t found dgram)

end

theorem agreesRoomy (heard : Heard d) (prompt : d.view.Prompt) : Agrees d ↔ Roomy d := by
  constructor
  · intro agrees me fd g x target t found dgram aims
    have quiet : (d.get x.object).state ≠ .listening := by
      intro listens
      rw [heard x.object listens] at dgram
      cases dgram
    have polled : d.pollFd me fd = some (d.sockPoll x.object) := by simp [pollFd,found]
    have ready : (d.sockPoll x.object).pout = true := by simp [sockPoll,quiet,dgram]
    by_contra full
    -- the same byte, sent to the same place without waiting
    have said := (agrees me fd _ polled).2 ready false (.send fd (some [0]) (target.map .ok) true false true)
      (.send 0 _ true false true (by cases target <;> nofun))
    have waits := mailByteFull me false ⟨x.object,[0],target,x.nonblock || true,true,0⟩ 0 rfl aims full
    cases target with
    | none =>
      simp only [enter,sysSend,found,map_none,doSend,dgram] at said
      rw [said] at waits
      cases waits
    | some path =>
      simp only [enter,sysSend,found,map_some,doSend,dgram] at said
      rw [said] at waits
      cases waits
  intro roomy me fd polled hook
  obtain ⟨⟨g,x⟩,found,rfl⟩ := map_eq_some_iff.mp hook
  exact ⟨fun ready pending q takes => takesAtOnce heard found ready takes,
    fun ready pending q sends => sendsAtOnce prompt roomy found ready sends⟩

/- `poll` agrees with the calls in a reachable state exactly if no open datagram socket has a
place to send to whose queue is full. -/
theorem pollAgrees (idle : Addr) (view : View) (events : List (Calls.Event SockRequest)) (pipes : Pipes)
    (terminal : Option Tty) : ∀ m ∈ visited (step idle) (boot idle view) events, m.dev.view.Prompt →
    (pipes.Agrees ∧ Tty.Agrees terminal ∧ Agrees m.dev ↔ Roomy m.dev) := by
  intro m visited prompt
  have preserved (m : Machine) e n (good : Sound idle m ∧ Heard m.dev) (taken : step idle m e = some n) :
      Sound idle n ∧ Heard n.dev :=
    ⟨stepSound good.1 taken,stepHeard good.1 good.2 taken⟩
  have heard := (visitedAlways preserved ⟨bootSound idle view,fun _ => nofun⟩ m visited).2
  rw [agreesRoomy heard prompt]
  exact ⟨fun all => all.2.2,fun roomy => ⟨Pipes.agrees pipes,Tty.agrees terminal,roomy⟩⟩

def fillPair : List (Calls.Event SockRequest) :=
  [.kernel (.createUser (some 1) prioUser),.kernel .start,.request (.socketpair 1 2 0 true false false 64 true true true)]

def openPipe : Pipes := (Pipes.initial.enter 1 false (.pipe2 true true false 64)).dev

theorem pollAgreesOnPair : (openPipe.pollFd 1 1).map Polled.pout = some true ∧
    ∃ m ∈ visited (step 0) (boot 0 oneFile) fillPair, (m.dev.pollFd 1 0).map Polled.pout = some true ∧ m.dev.view.Prompt ∧
    (openPipe.Agrees ∧ Tty.Agrees (some {}) ∧ Agrees m.dev ↔ Roomy m.dev) := by
  have paired : (Runs.run (step 0) (boot 0 oneFile) fillPair).map (fun m => ((m.dev.pollFd 1 0).map Polled.pout,m.dev.view)) =
    some (some true,oneFile) := rfl
  obtain ⟨m,seen,same⟩ := visitedShows paired
  obtain ⟨ready,view⟩ := Prod.mk.inj same
  have prompt : m.dev.view.Prompt := by
    rw [view]
    refine ⟨fun p path => ?_,fun p n => nofun⟩
    unfold oneFile
    dsimp only
    split <;> nofun
  exact ⟨rfl,m,seen,ready,prompt,pollAgrees 0 oneFile fillPair openPipe (some {}) m seen prompt⟩

def fillMessage : SockRequest := .send 0 (some (List.replicate sockBuf 0)) none false false true

theorem fillDone (pending) {g x} (found : d.fdSock me 0 = some (g,x)) (dgram : (d.get x.object).type = .dgram)
    {p} (peer : (d.get x.object).peer = some p) (empty : (d.get p).queued = 0) (alive : Live d p) :
    let e := (d.enter me pending fillMessage).dev
    e.fdSock me 0 = some (g,x) ∧ (e.get p).queued = sockBuf ∧ (e.get x.object).type = .dgram ∧
    (e.get x.object).peer = some p ∧ (e.get x.object).state = (d.get x.object).state := by
  have short : ¬ (List.replicate sockBuf (0 : UInt8)).length > sockBuf := by simp
  have fits : ¬ (d.get p).queued + (List.replicate sockBuf (0 : UInt8)).length > sockBuf := by simp [empty]
  have target : d.dgramTarget me x.object none = .ok p := by simp [dgramTarget,peer]
  have shape : (d.enter me pending fillMessage).dev = d.modify p (fun y => {y with
      msgs := y.msgs ++ [⟨List.replicate sockBuf 0,(d.get x.object).name⟩],
      queued := y.queued + (List.replicate sockBuf (0 : UInt8)).length}) := by
    simp only [enter,fillMessage,sysSend,found,doSend,dgram,dgramSend,if_neg short,target,if_neg fits]
    rfl
  dsimp only
  rw [shape,getModifySelf alive,getModify]
  refine ⟨found,by simp [empty],?_⟩
  split
  · rename_i here
    rw [here.1] at dgram peer ⊢
    exact ⟨dgram,peer,rfl⟩
  · exact ⟨dgram,peer,rfl⟩

theorem fullPairReady : ∃ m ∈ visited (step 0) (boot 0 oneFile) (fillPair ++ [.request fillMessage]),
    (m.dev.pollFd 1 0).map Polled.pout = some true ∧
    (m.dev.enter 1 false (.send 0 (some [0]) none true false true)).waits = true := by
  have paired : (Runs.run (step 0) (boot 0 oneFile) fillPair).map (fun m =>
      (m.caller 0,(m.calls 1).isNone,(m.dev.fdSock 1 0).map (fun x => x.2.object))) = some (some 1,true,some 0) := by
    decide +kernel
  have ends : (Runs.run (step 0) (boot 0 oneFile) fillPair).map (fun m =>
      ((m.dev.get 0).type,(m.dev.get 0).peer,(m.dev.get 0).state,(m.dev.get 1).queued,(m.dev.sock 1).isSome)) =
      some (.dgram,some 1,.connected,0,true) := by decide +kernel
  obtain ⟨m,reached,same⟩ := map_eq_some_iff.mp paired
  rw [reached] at ends
  simp only [map_some,Option.some.injEq,Prod.mk.injEq] at same ends
  obtain ⟨caller,outside,file⟩ := same
  obtain ⟨dgram,peer,connected,empty,alive⟩ := ends
  obtain ⟨⟨g,x⟩,found,object⟩ := map_eq_some_iff.mp file
  rw [← object] at dgram peer connected
  have filled := fillDone (m.pending 1) found dgram peer empty alive
  have last : step 0 m (.request fillMessage) = some (m.finish 1 (m.dev.enter 1 (m.pending 1) fillMessage)) := by
    simp only [step,Calls.System.step,caller,isNone_iff_eq_none.mp outside,bind_some]
    rfl
  have run : Runs.run (step 0) (boot 0 oneFile) (fillPair ++ [.request fillMessage]) =
      some (m.finish 1 (m.dev.enter 1 (m.pending 1) fillMessage)) := by
    rw [runAppend,reached]
    simp only [bind_some,Runs.run,last]
  refine ⟨_,visitedLast run,?_⟩
  rw [Calls.finishDev]
  generalize (m.dev.enter 1 (m.pending 1) fillMessage).dev = e at filled ⊢
  obtain ⟨found,full,dgram,peer,state⟩ := filled
  rw [connected] at state
  constructor
  · simp [pollFd,found,sockPoll,state,dgram]
  simp only [enter,sysSend,found,doSend,dgram]
  refine mailByteFull 1 false _ 0 rfl (t := 1) ?_ (by rw [full]; omega)
  simp [dgramTarget,peer]

end Sockets
end Miviex
